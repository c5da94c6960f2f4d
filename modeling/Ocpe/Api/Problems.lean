import Ocpe.Api.Server
import Ocpe.Worker.Advertised
import Ocpe.Worker.Stored

/-!
# The problems as the API shows them

The routes `GET /problems` and `GET /problems/([^/]+)` of `api/src/server.cpp`, which ask neither
Redis nor for a token.

* `getProblems_ok_iff`: the list is answered exactly if `list_problems` returns and every id is
  UTF-8, so one directory that is not keeps all problems from the page.
* `read_getProblems`: the body of the answer reads back as what `list_problems` returned.
* `problems_served`: and each problem of it has a page of its own that says the same, but for the
  count, which is the number of tests that are judged.
-/

namespace Ocpe

open Lib

/-! ### What was read can be written -/

theorem utf8_problemInfoFromJson {F : JsonFormat} {text : Bytes} {info : ProblemInfo}
    (h : problemInfoFromJson F text = .ok info) : info.Utf8 := by
  unfold problemInfoFromJson at h
  obtain ⟨j, hparse, h⟩ := bind_eq_ok.mp h
  have hj : j.Utf8 := by
    unfold JsonFormat.parseText at hparse
    split at hparse
    · next j' hj' => cases hparse; exact F.parse_utf8 _ _ hj'
    · cases hparse
  unfold problemInfoOfJson at h
  obtain ⟨id, hid, h⟩ := bind_eq_ok.mp h
  obtain ⟨title, htitle, h⟩ := bind_eq_ok.mp h
  obtain ⟨description, hdescription, h⟩ := bind_eq_ok.mp h
  obtain ⟨timeLimitMs, -, h⟩ := bind_eq_ok.mp h
  obtain ⟨memoryLimitMb, -, h⟩ := bind_eq_ok.mp h
  obtain ⟨testCaseCount, -, h⟩ := bind_eq_ok.mp h
  cases h
  exact ⟨utf8_valueStr hj (by decide) hid, utf8_valueStr hj (by decide) htitle,
    utf8_valueStr hj (by decide) hdescription⟩

theorem problemInfoFromJson_toJson {F : JsonFormat} {problem : ProblemInfo} {b : Bytes}
    (h : problemInfoToJson F problem = .ok b) : problemInfoFromJson F b = .ok problem := by
  rw [problemInfoFromJson, F.parseText_dumpText (plain_problemInfoJson problem) h, ok_bind,
    problemInfoOfJson_json]

/-! ### The routes -/

/-- The loop of `GET /problems`. -/
def problemsArray (F : JsonFormat) : List ProblemInfo → Except JsonError (List Json)
  | [] => return []
  | p :: problems => do
    let j ← F.parseText (← problemInfoToJson F p)
    return j :: (← problemsArray F problems)

/-- The records in the body of `GET /problems`. -/
def readProblems : Json → Except JsonError (List ProblemInfo)
  | .arr l => l.mapM problemInfoOfJson
  | _ => .error (.typeError 302)

namespace ApiServer

variable (cfg : Config) (files : FileSys)

/-- `GET /problems` -/
def getProblems : Except ListFault Response := do
  let problems ← listProblems files cfg.problemsDir cfg.format
  let arr ← (problemsArray cfg.format problems).mapError .json
  let content ← (cfg.format.dumpText (.arr arr)).mapError .json
  return { content }

/-- `GET /problems/([^/]+)` -/
def getProblemById (id : Bytes) : Except JsonError Response := do
  match ← getProblem files cfg.problemsDir cfg.format id with
  | none => return errorResponse 404 "problem not found"
  | some problem => return { content := ← problemInfoToJson cfg.format problem }

end ApiServer

/-! ### The list -/

section Array

variable {F : JsonFormat} {problems : List ProblemInfo}

theorem problemsArray_eq_ok {arr : List Json} (h : problemsArray F problems = .ok arr) :
    arr = problems.map problemInfoJson := by
  induction problems generalizing arr with
  | nil =>
    cases h
    rfl
  | cons p problems ih =>
    rw [problemsArray] at h
    obtain ⟨b, hb, h⟩ := bind_eq_ok.mp h
    obtain ⟨j, hj, h⟩ := bind_eq_ok.mp h
    obtain ⟨rest, hrest, h⟩ := bind_eq_ok.mp h
    cases h
    rw [F.parseText_dumpText (plain_problemInfoJson p) hb] at hj
    cases hj
    rw [List.map_cons, ih hrest]

theorem problemsArray_ok_iff :
    (∃ arr, problemsArray F problems = .ok arr) ↔ ∀ p ∈ problems, p.Utf8 := by
  induction problems with
  | nil => simp [problemsArray, pure, Except.pure]
  | cons p problems ih =>
    rw [List.forall_mem_cons, ← ih]
    constructor
    · rintro ⟨arr, h⟩
      rw [problemsArray] at h
      obtain ⟨b, hb, h⟩ := bind_eq_ok.mp h
      obtain ⟨j, -, h⟩ := bind_eq_ok.mp h
      obtain ⟨rest, hrest, -⟩ := bind_eq_ok.mp h
      have hok : (F.dumpText (problemInfoJson p)).isOk = true := by
        rw [problemInfoToJson] at hb
        rw [hb]
        rfl
      exact ⟨(utf8_problemInfoJson p).mp (F.dumpText_isOk.mp hok), rest, hrest⟩
    · rintro ⟨hp, rest, hrest⟩
      obtain ⟨b, hb⟩ := F.exists_dumpText ((utf8_problemInfoJson p).mpr hp)
      refine ⟨problemInfoJson p :: rest, ?_⟩
      rw [problemsArray, problemInfoToJson, hb, ok_bind,
        F.parseText_dumpText (plain_problemInfoJson p) hb, ok_bind, hrest]
      rfl

theorem readProblems_map (problems : List ProblemInfo) :
    readProblems (.arr (problems.map problemInfoJson)) = .ok problems := by
  rw [readProblems]
  induction problems with
  | nil => rfl
  | cons p problems ih =>
    rw [List.map_cons, List.mapM_cons, problemInfoOfJson_json, ok_bind, ih]
    rfl

end Array

namespace ApiServer

variable {cfg : Config} {files : FileSys}

/-- Of the texts of a listed problem only the id can be other than UTF-8. -/
theorem utf8_of_listed {problems : List ProblemInfo} {p : ProblemInfo}
    (hlist : listProblems files cfg.problemsDir cfg.format = .ok problems) (hp : p ∈ problems) :
    p.Utf8 ↔ ValidUtf8 p.id := by
  obtain ⟨names, -, name, -, hentry⟩ := (mem_listProblems hlist).mp hp
  obtain ⟨text, info, count, -, -, -, hinfo, -, rfl⟩ := problemOfEntry_ok hentry
  obtain ⟨-, htitle, hdescription⟩ := utf8_problemInfoFromJson hinfo
  exact ⟨And.left, fun hid => ⟨hid, htitle, hdescription⟩⟩

theorem getProblems_ok_iff :
    (∃ response, getProblems cfg files = .ok response) ↔
      ∃ problems, listProblems files cfg.problemsDir cfg.format = .ok problems ∧
        ∀ p ∈ problems, ValidUtf8 p.id := by
  constructor
  · rintro ⟨response, h⟩
    obtain ⟨problems, hlist, h⟩ := bind_eq_ok.mp h
    obtain ⟨arr, harr, -⟩ := bind_eq_ok.mp h
    have hutf8 := problemsArray_ok_iff.mp ⟨arr, mapError_eq_ok.mp harr⟩
    exact ⟨problems, hlist, fun p hp => (utf8_of_listed hlist hp).mp (hutf8 p hp)⟩
  · rintro ⟨problems, hlist, hids⟩
    have hutf8 : ∀ p ∈ problems, p.Utf8 := fun p hp => (utf8_of_listed hlist hp).mpr (hids p hp)
    obtain ⟨arr, harr⟩ := problemsArray_ok_iff.mpr hutf8
    have hdump : (Json.arr arr).Utf8 := by
      rw [problemsArray_eq_ok harr, utf8_arr]
      intro j hj
      obtain ⟨p, hp, rfl⟩ := List.mem_map.mp hj
      exact (utf8_problemInfoJson p).mpr (hutf8 p hp)
    obtain ⟨content, hcontent⟩ := cfg.format.exists_dumpText hdump
    refine ⟨{ content }, ?_⟩
    rw [getProblems, hlist, ok_bind, mapError_eq_ok.mpr harr, ok_bind,
      mapError_eq_ok.mpr hcontent]
    rfl

/-- **The answer reads back** as the list. -/
theorem read_getProblems {response : Response} (h : getProblems cfg files = .ok response) :
    response.status = 200 ∧ ∃ problems,
      listProblems files cfg.problemsDir cfg.format = .ok problems ∧
        (cfg.format.parseText response.content >>= readProblems) = .ok problems := by
  obtain ⟨problems, hlist, h⟩ := bind_eq_ok.mp h
  obtain ⟨arr, harr, h⟩ := bind_eq_ok.mp h
  obtain ⟨content, hcontent, h⟩ := bind_eq_ok.mp h
  cases h
  obtain rfl := problemsArray_eq_ok (mapError_eq_ok.mp harr)
  have hplain : (Json.arr (problems.map problemInfoJson)).Plain := by
    rw [plain_arr]
    intro j hj
    obtain ⟨p, -, rfl⟩ := List.mem_map.mp hj
    exact plain_problemInfoJson p
  refine ⟨rfl, problems, hlist, ?_⟩
  rw [cfg.format.parseText_dumpText hplain (mapError_eq_ok.mp hcontent), ok_bind,
    readProblems_map]

theorem getProblemById_of_listed {problems : List ProblemInfo} {p : ProblemInfo}
    (hlist : listProblems files cfg.problemsDir cfg.format = .ok problems) (hp : p ∈ problems)
    (hid : ValidUtf8 p.id) :
    ∃ response, getProblemById cfg files p.id = .ok response ∧ response.status = 200 ∧
      problemInfoFromJson cfg.format response.content = .ok { p with
        testCaseCount :=
          Int32.ofNat (loadTestCases files cfg.problemsDir p.id).length } := by
  have hutf8 := (utf8_of_listed hlist hp).mpr hid
  obtain ⟨names, -, name, -, hentry⟩ := (mem_listProblems hlist).mp hp
  obtain ⟨text, info, count, -, -, htext, hinfo, -, rfl⟩ := problemOfEntry_ok hentry
  have hget : getProblem files cfg.problemsDir cfg.format name =
      .ok (some { info with
        id := name
        testCaseCount := Int32.ofNat (loadTestCases files cfg.problemsDir name).length }) := by
    rw [getProblem, htext]
    dsimp only
    rw [hinfo]
    rfl
  obtain ⟨b, hb⟩ := cfg.format.exists_dumpText ((utf8_problemInfoJson { info with
    id := name
    testCaseCount := Int32.ofNat (loadTestCases files cfg.problemsDir name).length }).mpr hutf8)
  refine ⟨{ content := b }, ?_, rfl, problemInfoFromJson_toJson hb⟩
  rw [getProblemById, hget, ok_bind]
  dsimp only
  rw [problemInfoToJson, hb]
  rfl

/-- **The problems that the API shows.**  The list is answered exactly if `list_problems` returns
and every id is UTF-8.  Its body reads back as that list, and each problem of it has a page that
says the same of it, with the number of tests that are judged for the count. -/
theorem problems_served (cfg : Config) (files : FileSys) :
    ((∃ response, getProblems cfg files = .ok response) ↔
      ∃ problems, listProblems files cfg.problemsDir cfg.format = .ok problems ∧
        ∀ p ∈ problems, ValidUtf8 p.id) ∧
    ∀ response, getProblems cfg files = .ok response → response.status = 200 ∧
      ∃ problems, listProblems files cfg.problemsDir cfg.format = .ok problems ∧
        (cfg.format.parseText response.content >>= readProblems) = .ok problems ∧
        ∀ p ∈ problems, ∃ page, getProblemById cfg files p.id = .ok page ∧ page.status = 200 ∧
          problemInfoFromJson cfg.format page.content = .ok { p with
            testCaseCount :=
              Int32.ofNat (loadTestCases files cfg.problemsDir p.id).length } := by
  refine ⟨getProblems_ok_iff, fun response h => ?_⟩
  obtain ⟨hstatus, problems, hlist, hread⟩ := read_getProblems h
  obtain ⟨problems', hlist', hids⟩ := getProblems_ok_iff.mp ⟨response, h⟩
  cases hlist.symm.trans hlist'
  exact ⟨hstatus, problems, hlist, hread, fun p hp =>
    getProblemById_of_listed hlist hp (hids p hp)⟩

/-- A test without an output counts in the list and not on the page. -/
theorem problems_served_one :
    ∃ response page,
      getProblems textConfig (oneProblem [("p/a/tests/0.in", [])]) = .ok response ∧
      (jsonText.parseText response.content >>= readProblems) = .ok [recordOf 1] ∧
      getProblemById textConfig (oneProblem [("p/a/tests/0.in", [])]) "a" = .ok page ∧
      problemInfoFromJson jsonText page.content = .ok (recordOf 0) := by
  have hlist : listProblems (oneProblem [("p/a/tests/0.in", [])]) "p" jsonText =
      .ok [recordOf 1] := by
    refine listProblems_oneProblem (countInputs_eq_ok_iff.mpr ⟨by omega, by decide, fun j hj => ?_⟩)
    obtain rfl : j = 0 := by omega
    decide
  obtain ⟨hiff, hall⟩ := problems_served textConfig (oneProblem [("p/a/tests/0.in", [])])
  obtain ⟨response, hresponse⟩ := hiff.mpr ⟨[recordOf 1], hlist, fun p hp => by
    rw [List.mem_singleton.mp hp]
    decide⟩
  obtain ⟨-, problems, hlist', hread, hpages⟩ := hall response hresponse
  cases hlist.symm.trans hlist'
  obtain ⟨page, hpage, -, hinfo⟩ := hpages (recordOf 1) (List.mem_singleton_self _)
  exact ⟨response, page, hresponse, hread, hpage, hinfo⟩

end ApiServer

end Ocpe
