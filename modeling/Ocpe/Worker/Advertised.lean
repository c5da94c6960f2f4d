import Ocpe.Lib.JsonText
import Ocpe.Shared.ProblemList
import Ocpe.Worker.Evaluator

/-!
# The advertised number of tests

`list_problems` counts the tests of a problem in one way and `load_test_cases` in
another.

* `length_loadTestCasesFrom_eq_iff`: when the second comes to the same number.
* `advertised_iff`: a record of `list_problems` is that of `get_problem`, and its count
  the total of every submission that compiles, exactly when the problem has at most
  10000 tests, all of them readable.
-/

namespace Ocpe

open Lib

section Counts

variable {files : FileSys} {testsDir : Bytes}

def TestReadable (files : FileSys) (testsDir : Bytes) (i : Nat) : Prop :=
  (files.ifstream (inPath testsDir i)).isSome = true ∧
    (files.ifstream (outPath testsDir i)).isSome = true

theorem length_loadTestCasesFrom_readable {n i : Nat}
    (hstat : (files.stat (inPath testsDir i)).isSome = true)
    (hread : TestReadable files testsDir i) :
    (loadTestCasesFrom files testsDir (n + 1) i).length =
      (loadTestCasesFrom files testsDir n (i + 1)).length + 1 := by
  have hin : testsDir ++ bytes "/" ++ decimal i ++ bytes ".in" = inPath testsDir i := rfl
  have hout : testsDir ++ bytes "/" ++ decimal i ++ bytes ".out" = outPath testsDir i := rfl
  obtain ⟨reg, hreg⟩ := Option.isSome_iff_exists.mp hstat
  obtain ⟨input, hinput⟩ := Option.isSome_iff_exists.mp hread.1
  obtain ⟨expected, hexpected⟩ := Option.isSome_iff_exists.mp hread.2
  rw [loadTestCasesFrom]
  simp only [hin, hout, hreg, hinput, hexpected]
  rfl

theorem length_loadTestCasesFrom_last {n i : Nat}
    (h : files.stat (inPath testsDir i) = none ∨ ¬ TestReadable files testsDir i) :
    (loadTestCasesFrom files testsDir n i).length = 0 := by
  have hin : testsDir ++ bytes "/" ++ decimal i ++ bytes ".in" = inPath testsDir i := rfl
  have hout : testsDir ++ bytes "/" ++ decimal i ++ bytes ".out" = outPath testsDir i := rfl
  cases n with
  | zero => rfl
  | succ n =>
    rw [loadTestCasesFrom]
    simp only [hin, hout]
    split
    · rfl
    next hstat =>
    split
    · next input expected hinput hexpected =>
      exfalso
      rcases h with h | h
      · rw [h] at hstat
        exact hstat rfl
      · apply h
        rw [TestReadable, hinput, hexpected]
        exact ⟨rfl, rfl⟩
    · rfl

theorem length_loadTestCasesFrom_eq_iff {n i count : Nat} (hle : i ≤ count)
    (hnone : files.stat (inPath testsDir count) = none)
    (hall : ∀ j, i ≤ j → j < count → (files.stat (inPath testsDir j)).isSome = true) :
    (loadTestCasesFrom files testsDir n i).length = count - i ↔
      count - i ≤ n ∧ ∀ j, i ≤ j → j < count → TestReadable files testsDir j := by
  induction n generalizing i with
  | zero =>
    show 0 = count - i ↔ _
    constructor
    · intro h
      exact ⟨by omega, fun j hj hlt => by omega⟩
    · rintro ⟨hn, -⟩
      omega
  | succ n ih =>
    rcases Nat.eq_or_lt_of_le hle with rfl | hlt
    · -- the first number without an `.in` file
      rw [length_loadTestCasesFrom_last (.inl hnone)]
      exact iff_of_true (by omega) ⟨by omega, fun j hj hlt => by omega⟩
    · by_cases hread : TestReadable files testsDir i
      · rw [length_loadTestCasesFrom_readable (hall i (Nat.le_refl i) hlt) hread]
        have hnext := @ih (i + 1) hlt fun j hj hlt => hall j (by omega) hlt
        constructor
        · intro h
          obtain ⟨hn, hreadable⟩ := hnext.mp (by omega)
          refine ⟨by omega, fun j hj hlt => ?_⟩
          rcases Nat.eq_or_lt_of_le hj with rfl | hj
          · exact hread
          · exact hreadable j hj hlt
        · rintro ⟨hn, hreadable⟩
          have h := hnext.mpr ⟨by omega, fun j hj hlt => hreadable j (by omega) hlt⟩
          omega
      · rw [length_loadTestCasesFrom_last (.inr hread)]
        refine iff_of_false (by omega) ?_
        rintro ⟨-, hreadable⟩
        exact hread (hreadable i (Nat.le_refl i) hlt)

end Counts

section Advertised

variable {F : JsonFormat} {files : FileSys} {problemsDir : Bytes} {p : ProblemInfo}

/-- The problem has at most 10000 tests, numbered from 0, and both files of each can be
read. -/
def AllReadable (files : FileSys) (testsDir : Bytes) : Prop :=
  ∃ count ≤ 10000, files.stat (inPath testsDir count) = none ∧
    ∀ j < count, (files.stat (inPath testsDir j)).isSome = true ∧ TestReadable files testsDir j

theorem count_eq_length_iff {testsDir : Bytes} {count : Nat}
    (hcount : countInputs files testsDir = .ok count) :
    (loadTestCasesFrom files testsDir 10000 0).length = count ↔ AllReadable files testsDir := by
  obtain ⟨-, hnone, hall⟩ := countInputs_eq_ok_iff.mp hcount
  have hiff := @length_loadTestCasesFrom_eq_iff files testsDir 10000 0 count (Nat.zero_le _) hnone
    fun j _ hlt => hall j hlt
  rw [Nat.sub_zero] at hiff
  rw [hiff]
  constructor
  · rintro ⟨hle, hreadable⟩
    exact ⟨count, hle, hnone, fun j hlt => ⟨hall j hlt, hreadable j (Nat.zero_le _) hlt⟩⟩
  · rintro ⟨count', hle, hnone', hall'⟩
    -- there is one first number without an `.in` file
    have hsame : count' = count := by
      rcases Nat.lt_trichotomy count' count with hlt | heq | hlt
      · have hsome := hall count' hlt
        rw [hnone'] at hsome
        cases hsome
      · exact heq
      · have hsome := (hall' count hlt).1
        rw [hnone] at hsome
        cases hsome
    subst hsame
    exact ⟨hle, fun j _ hlt => (hall' j hlt).2⟩

/-- **When a problem is what its record says**: a record of `list_problems` has the
fields of `get_problem`, and its count is the total of every submission that compiles,
exactly when the problem has at most 10000 tests and all of them can be read. -/
theorem advertised_iff {problems : List ProblemInfo}
    (hlist : listProblems files problemsDir F = .ok problems) (hp : p ∈ problems) :
    (getProblem files problemsDir F p.id = .ok (some p) ∧
      ∀ (submissionsDir : Bytes) (m : Machine) (job : SubmissionJob) (problem : ProblemInfo)
        (result : SubmissionResult), m.files = files → job.problemId = p.id →
        Compiles F problemsDir submissionsDir m job problem →
        evaluateSubmission F problemsDir submissionsDir m job = .ok result →
        result.total = p.testCaseCount) ↔
      AllReadable files (testsDirOf problemsDir p.id) := by
  obtain ⟨names, -, name, -, hentry⟩ := (mem_listProblems hlist).mp hp
  obtain ⟨text, info, count, -, -, htext, hinfo, hcount, rfl⟩ := problemOfEntry_ok hentry
  dsimp only
  have hlt := (countInputs_eq_ok_iff.mp hcount).1
  have hle : (loadTestCases files problemsDir name).length ≤ 10000 :=
    length_loadTestCases files problemsDir name
  have hget : getProblem files problemsDir F name =
      .ok (some { info with
        id := name
        testCaseCount := Int32.ofNat (loadTestCases files problemsDir name).length }) := by
    rw [getProblem, htext]
    dsimp only
    rw [hinfo]
    rfl
  -- the counts are small enough to be told apart as an `int`
  have hint : Int32.ofNat (loadTestCases files problemsDir name).length = Int32.ofNat count ↔
      (loadTestCases files problemsDir name).length = count := by
    rw [← Int32.toInt_inj, Int32.toInt_ofNat_of_lt (by omega), Int32.toInt_ofNat_of_lt hlt,
      Int.ofNat_inj]
  have hread : (loadTestCases files problemsDir name).length = count ↔
      AllReadable files (testsDirOf problemsDir name) := count_eq_length_iff hcount
  rw [hget, ← hread, ← hint]
  constructor
  · rintro ⟨hsame, -⟩
    injection hsame with hsame
    injection hsame with hsame
    exact congrArg ProblemInfo.testCaseCount hsame
  · intro heq
    refine ⟨by rw [heq], ?_⟩
    rintro submissionsDir m job problem result rfl hjob hcompiles heval
    rw [evaluateSubmission_of_compiles hcompiles] at heval
    split at heval
    · cases heval
    · cases heval
      rw [judgeTests_total, hjob, heq]

end Advertised

/-! ### A test without an output file -/

def oneProblem (tests : List (Bytes × Bytes)) : FileSys :=
  { FileSys.ofFiles (("p/a/meta.json", bytes "\x7b\x7d") :: tests) with
    entries := fun path => if path = "p" then some [bytes ".", bytes "..", bytes "a"] else none }

def recordOf (count : Nat) : ProblemInfo := { id := "a", testCaseCount := Int32.ofNat count }

theorem listProblems_oneProblem {tests : List (Bytes × Bytes)} {count : Nat}
    (hcount : countInputs (oneProblem tests) (testsDirOf "p" "a") = .ok count) :
    listProblems (oneProblem tests) "p" jsonText = .ok [recordOf count] := by
  have hname : problemOfEntry (oneProblem tests) "p" jsonText "a" = .ok (some (recordOf count)) := by
    have hdir : bytes "p" ++ bytes "/" ++ bytes "a" ++ bytes "/tests" = testsDirOf "p" "a" := rfl
    unfold problemOfEntry
    rw [hdir, hcount]
    rfl
  have hentries : (oneProblem tests).entries (cstr "p") =
      some [bytes ".", bytes "..", bytes "a"] := rfl
  rw [listProblems, hentries]
  dsimp only
  rw [problemsOfEntries, problemsOfEntries, problemsOfEntries, hname]
  rfl

/-- **A test that is advertised and not judged**: it has an input and no output. -/
theorem advertised_not_judged :
    listProblems (oneProblem [("p/a/tests/0.in", [])]) "p" jsonText = .ok [recordOf 1] ∧
      getProblem (oneProblem [("p/a/tests/0.in", [])]) "p" jsonText "a" =
        .ok (some (recordOf 0)) ∧
      recordOf 1 ≠ recordOf 0 := by
  refine ⟨listProblems_oneProblem ?_, rfl, by decide⟩
  rw [countInputs_eq_ok_iff]
  refine ⟨by omega, by decide, fun j hj => ?_⟩
  obtain rfl : j = 0 := by omega
  decide

theorem advertised_iff_one :
    getProblem (oneProblem [("p/a/tests/0.in", []), ("p/a/tests/0.out", "1")]) "p" jsonText "a" =
      .ok (some (recordOf 1)) := by
  have hlist : listProblems (oneProblem [("p/a/tests/0.in", []), ("p/a/tests/0.out", "1")]) "p"
      jsonText = .ok [recordOf 1] := by
    refine listProblems_oneProblem (countInputs_eq_ok_iff.mpr ⟨by omega, by decide, fun j hj => ?_⟩)
    obtain rfl : j = 0 := by omega
    decide
  refine ((advertised_iff hlist (List.mem_singleton_self _)).mpr ?_).1
  refine ⟨1, by omega, by decide, fun j hj => ?_⟩
  obtain rfl : j = 0 := by omega
  exact ⟨by decide, by decide, by decide⟩

end Ocpe
