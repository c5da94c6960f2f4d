import Ocpe.Shared.ProblemLoader

/-!
# The list of problems

What a record of `list_problems` was read from.

* `countInputs_eq_ok_iff`: the count is the least number without an `.in` file.
* `problemOfEntry_ok`: a record comes from a name of the directory that does not begin
  with a dot.
* `mem_listProblems`: the records are those of the names.
-/

namespace Ocpe

open Lib

variable {F : JsonFormat} {files : FileSys} {problemsDir testsDir : Bytes} {p : ProblemInfo}

def inPath (testsDir : Bytes) (i : Nat) : Bytes := testsDir ++ "/" ++ decimal i ++ ".in"

def outPath (testsDir : Bytes) (i : Nat) : Bytes := testsDir ++ "/" ++ decimal i ++ ".out"

def testsDirOf (problemsDir problemId : Bytes) : Bytes :=
  problemsDir ++ "/" ++ problemId ++ "/tests"

theorem countInputsFrom_eq_ok_iff {n i count : Nat} :
    countInputsFrom files testsDir n i = .ok count ↔
      (i ≤ count ∧ count < i + n) ∧ files.stat (inPath testsDir count) = none ∧
        ∀ j, i ≤ j → j < count → (files.stat (inPath testsDir j)).isSome = true := by
  induction n generalizing i with
  | zero =>
    refine iff_of_false (fun h => nomatch h) ?_
    rintro ⟨⟨hle, hlt⟩, -⟩
    omega
  | succ n ih =>
    rw [countInputsFrom]
    cases hstat : files.stat (inPath testsDir i) with
    | none =>
      rw [if_pos (by rw [← inPath, hstat]; rfl)]
      constructor
      · intro h
        cases h
        exact ⟨by omega, hstat, fun j hj hlt => by omega⟩
      · rintro ⟨⟨hle, -⟩, -, hall⟩
        rcases Nat.lt_or_ge i count with hlt | hge
        · have hsome := hall i (Nat.le_refl i) hlt
          rw [hstat] at hsome
          cases hsome
        · rw [Nat.le_antisymm hle hge]
    | some reg =>
      rw [if_neg (by rw [← inPath, hstat]; exact fun h => nomatch h), ih]
      constructor
      · rintro ⟨⟨hle, hlt⟩, hnone, hall⟩
        refine ⟨by omega, hnone, fun j hj hlt => ?_⟩
        rcases Nat.eq_or_lt_of_le hj with rfl | hj
        · rw [hstat]
          rfl
        · exact hall j hj hlt
      · rintro ⟨⟨hle, hlt⟩, hnone, hall⟩
        have hne : i ≠ count := by
          rintro rfl
          rw [hstat] at hnone
          cases hnone
        exact ⟨by omega, hnone, fun j hj hlt => hall j (by omega) hlt⟩

/-- **What `list_problems` counts**: the first number without an `.in` file. -/
theorem countInputs_eq_ok_iff {count : Nat} :
    countInputs files testsDir = .ok count ↔
      count < 2147483648 ∧ files.stat (inPath testsDir count) = none ∧
        ∀ j < count, (files.stat (inPath testsDir j)).isSome = true := by
  rw [countInputs, countInputsFrom_eq_ok_iff]
  simp only [Nat.zero_le, true_and, Nat.zero_add, true_implies]

/-- **A record of `list_problems`** is read from the entry of its id. -/
theorem problemOfEntry_ok {name : Bytes} (h : problemOfEntry files problemsDir F name = .ok (some p)) :
    ∃ text info count, name.head? ≠ some 46 ∧
      files.stat (problemsDir ++ "/" ++ name ++ "/meta.json") = some true ∧
      files.ifstream (problemsDir ++ "/" ++ name ++ "/meta.json") = some text ∧
      problemInfoFromJson F text = .ok info ∧
      countInputs files (testsDirOf problemsDir name) = .ok count ∧
      p = { info with id := name, testCaseCount := Int32.ofNat count } := by
  unfold problemOfEntry at h
  split at h
  · cases h
  next hdot =>
  dsimp only at h
  split at h
  · cases h
  next hstat =>
  split at h
  · cases h
  next text htext =>
  obtain ⟨info, hinfo, h⟩ := bind_eq_ok.mp h
  obtain ⟨count, hcount, h⟩ := bind_eq_ok.mp h
  cases h
  exact ⟨text, info, count, hdot, by simpa using hstat, htext, mapError_eq_ok.mp hinfo, hcount, rfl⟩

theorem mem_problemsOfEntries {names : List Bytes} {problems : List ProblemInfo}
    (h : problemsOfEntries files problemsDir F names = .ok problems) :
    p ∈ problems ↔ ∃ name ∈ names, problemOfEntry files problemsDir F name = .ok (some p) := by
  induction names generalizing problems with
  | nil =>
    cases h
    simp
  | cons name names ih =>
    rw [problemsOfEntries] at h
    obtain ⟨q, hq, h⟩ := bind_eq_ok.mp h
    obtain ⟨rest, hrest, h⟩ := bind_eq_ok.mp h
    cases h
    rw [List.mem_append, ih hrest, List.exists_mem_cons_iff, hq]
    simp only [Option.mem_toList, Except.ok.injEq]

theorem mem_listProblems {problems : List ProblemInfo}
    (h : listProblems files problemsDir F = .ok problems) :
    p ∈ problems ↔ ∃ names, files.entries (cstr problemsDir) = some names ∧ ∃ name ∈ names,
      problemOfEntry files problemsDir F name = .ok (some p) := by
  unfold listProblems at h
  split at h
  · next hnone =>
    cases h
    simp [hnone]
  · next names hnames =>
    rw [mem_problemsOfEntries h]
    simp [hnames]

end Ocpe
