import Ocpe.Worker.Stored

/-!
# One language for all

`POST /submit`, `evaluate_submission` and `compile_source` each derive the language of a
submission again from a string.  Here they are put side by side, for every string.

* `rejectsLanguage_iff`: the worker turns a job down for its language exactly when the string
  names no supported language.
* `toolchain_of_supported`: the extension and the compile command of a supported id are those
  of one language.
* `languages_agree`: so the three agree, from the request to the result.
-/

namespace Ocpe

open Lib Redis Prog RedisClient ApiServer WorkerPool

/-! ### The worker -/

/-- On these files the worker turns the job down as unsupported, whatever else it meets. -/
def RejectsLanguage (cfg : Config) (files : FileSys) (job : SubmissionJob) : Prop :=
  ∀ m : Machine, m.files = files → evaluation cfg m job =
    .ok { submissionId := job.submissionId
          problemId := job.problemId
          username := job.username
          language := normalizeLanguage job.language
          verdict := .compilationError
          compileOutput := bytes "Unsupported language: " ++ job.language }

variable {cfg : Config} {env : Surroundings}

theorem rejectsLanguage_iff {files : FileSys} {problem : ProblemInfo} {job : SubmissionJob}
    (hfound : getProblem files cfg.problemsDir cfg.format job.problemId = .ok (some problem)) :
    RejectsLanguage cfg files job ↔ isSupportedLanguage job.language = false := by
  constructor
  · intro h
    by_contra hsupported
    -- on a machine where no directory can be made a supported job ends by an exception
    have heval := h ⟨files, false, fun _ => .pipeFailed, fun _ => .pipeFailed, true⟩ rfl
    rw [evaluation, evaluateSubmission, hfound] at heval
    simp [Except.mapError, hsupported] at heval
  · intro hunsupported m hm
    rw [evaluation, evaluateSubmission, hm, hfound]
    simp [Except.mapError, hunsupported]
    rfl

/-! ### The compiler -/

/-- The extension of a source file and the way it is compiled, for each language. -/
inductive Toolchain : Bytes → Bytes →
    ((List Bytes → CompileRun) → Bytes → Bytes → CompileResult) → Prop
  | c : Toolchain "c" ".c" fun exec sourcePath outputPath =>
      compileResult outputPath [] (runCompileProcess (exec (cArgv sourcePath outputPath)))
  | cpp : Toolchain "cpp" ".cpp" fun exec sourcePath outputPath =>
      compileResult outputPath [] (runCompileProcess (exec (cppArgv sourcePath outputPath)))
  | python : Toolchain "python" ".py" fun exec sourcePath _ =>
      validatePythonSyntax exec sourcePath

/-- **The extension and the compile command of a supported id belong together.** -/
theorem toolchain_of_supported {id : Bytes} (hid : normalizeLanguage id = id)
    (h : isSupportedLanguage id = true) :
    Toolchain id (sourceExtension id) fun exec => compileSource exec id := by
  rw [isSupportedLanguage_iff, hid] at h
  rcases h with rfl | rfl | rfl
  · exact .c
  · exact .cpp
  · exact .python

/-- The last line of `source_extension` is not reached. -/
theorem listed_of_supported {id : Bytes} (h : isSupportedLanguage id = true) :
    (supportedLanguages.find? fun l => l.id = normalizeLanguage id).isSome = true := by
  rw [List.find?_isSome]
  exact List.any_eq_true.mp h

/-! ### From the request to the result -/

section Submits

variable {username body problemId sourceCode language : Bytes}
  (hsubmits : Submits cfg body problemId sourceCode language)

include hsubmits

theorem refusesLanguage_iff (hproblem : problemId ≠ []) (hsource : sourceCode ≠ []) :
    acceptSubmission cfg env username body =
        .ok (.error (errorResponse 400 "unsupported language")) ↔
      isSupportedLanguage language = false := by
  rw [acceptSubmission_of_submits hsubmits, if_neg (by simp [hproblem, hsource])]
  cases isSupportedLanguage language with
  | false => exact iff_of_true (if_pos rfl) rfl
  | true =>
    refine iff_of_false (fun h => ?_) (by simp)
    rw [if_neg (by simp)] at h
    obtain ⟨found, -, h⟩ := bind_eq_ok.mp h
    split at h
    · -- the problem is not found, which is another response
      simp +decide at h
    · split at h <;> cases h

theorem language_of_accepted {job : SubmissionJob}
    (haccept : acceptSubmission cfg env username body = .ok (.ok job)) :
    job.language = normalizeLanguage language := by
  rw [acceptSubmission_of_submits hsubmits] at haccept
  split at haccept
  · cases haccept
  split at haccept
  · cases haccept
  obtain ⟨found, -, haccept⟩ := bind_eq_ok.mp haccept
  split at haccept
  · cases haccept
  split at haccept <;> cases haccept
  rfl

end Submits

theorem announceSubmission_language {job : SubmissionJob} {t : List (Wire × Answer)}
    {response : Response} (h : (announceSubmission cfg job).Path t (.pure response)) :
    ∃ json, cfg.format.dumpText json = .ok response.content ∧
      json.valueStr "language" "" = .ok job.language := by
  obtain ⟨t₁, u, ok, rfl, -, h⟩ := path_bind_pure_iff.mp h
  obtain ⟨t₂, u, recorded, rfl, -, h⟩ := path_bind_pure_iff.mp h
  obtain ⟨t₃, u, queuePosition, rfl, -, h⟩ := path_bind_pure_iff.mp h
  obtain ⟨content, hdump, h⟩ := path_json_bind h (by simp)
  obtain ⟨-, hresponse⟩ := path_pure.mp h
  cases hresponse
  refine ⟨_, hdump, ?_⟩
  simp +decide [Json.value, Json.asString]

/-- **The API, the evaluator and the compiler agree on the language**, for every string that a
request can carry.  Normalising is idempotent; the request is turned down for the language
exactly when the worker would turn the job down for it; and when a request is answered 202, the
answer, the job in the queue and the result of every evaluation of it name the same supported
id, whose extension and compile command are those of one language. -/
theorem languages_agree (cfg : Config) (language : Bytes) :
    normalizeLanguage (normalizeLanguage language) = normalizeLanguage language ∧
    (∀ env username body problemId sourceCode files problem job,
      Submits cfg body problemId sourceCode language → problemId ≠ [] → sourceCode ≠ [] →
      job.language = normalizeLanguage language →
      getProblem files cfg.problemsDir cfg.format job.problemId = .ok (some problem) →
      (acceptSubmission cfg env username body =
          .ok (.error (errorResponse 400 "unsupported language")) ↔
        RejectsLanguage cfg files job)) ∧
    ∀ env authorization body problemId sourceCode t response,
      Submits cfg body problemId sourceCode language →
      (postSubmit cfg env authorization body).Path t (.pure response) → response.status = 202 →
      ∃ id job payload answer extension compile, id = normalizeLanguage language ∧
        (∃ json, cfg.format.dumpText json = .ok response.content ∧
          json.valueStr "language" "" = .ok id) ∧
        (.command (.lpush queueKey payload), answer) ∈ t ∧
        submissionJobFromJson cfg.format payload = .ok job ∧ job.language = id ∧
        (∀ m result, evaluation cfg m job = .ok result → result.language = id) ∧
        Toolchain id extension compile ∧
        (supportedLanguages.find? fun l => l.id = normalizeLanguage id).isSome = true ∧
        ∀ m, compileJob cfg.submissionsDir m job =
          let workDir := pathAppend cfg.submissionsDir job.submissionId
          compile m.exec (pathAppend workDir ("main" ++ extension)) (pathAppend workDir "main") := by
  refine ⟨normalizeLanguage_normalizeLanguage language, ?_, ?_⟩
  · intro env username body problemId sourceCode files problem job hsubmits hproblem hsource
      hlanguage hfound
    rw [rejectsLanguage_iff hfound, hlanguage, isSupportedLanguage_normalizeLanguage,
      refusesLanguage_iff hsubmits hproblem hsource]
  · intro env authorization body problemId sourceCode t response hsubmits hpath h202
    obtain ⟨t₁, t₂, t₃, username, job, payload, rfl, -, haccept, hpayload, hqueue, hannounce⟩ :=
      postSubmit_path_202 hpath h202
    obtain ⟨-, -, hsupported, hnormal⟩ := acceptSubmission_ok haccept
    have hlanguage := language_of_accepted hsubmits haccept
    obtain ⟨answer, rest, hsent⟩ : ∃ a t', t₂ = (.command (.lpush queueKey payload), a) :: t' := by
      rw [enqueueJob, hpayload] at hqueue
      exact succeeds_path_pure hqueue
    refine ⟨job.language, job, payload, answer, sourceExtension job.language,
      fun exec => compileSource exec job.language, hlanguage, announceSubmission_language hannounce,
      by simp [hsent], jobFromJson_toJson hpayload, rfl, fun m result heval => ?_,
      toolchain_of_supported hnormal hsupported, listed_of_supported hsupported, fun m => ?_⟩
    · rw [(evaluateSubmission_ok heval).1.language, hnormal]
    · rw [compileJob, hnormal]

/-- A submission that names no language is one in C for all three. -/
theorem languages_agree_submitted :
    ¬ RejectsLanguage textConfig oneTest zeroJob ∧
      ∃ t response,
        (postSubmit textConfig zeroSurroundings (some (bytes "Bearer " ++ (zeros 64).text))
          (JsonText.print submitJson)).Path t (.pure response) ∧ response.status = 202 ∧
        ∃ json, textConfig.format.dumpText json = .ok response.content ∧
          json.valueStr "language" "" = .ok "c" := by
  have hsubmits : Submits textConfig (JsonText.print submitJson) "a" "x" "c" :=
    ⟨submitJson, parseBody_submitJson, by decide, by decide, by decide⟩
  obtain ⟨-, hrefuse, haccepted⟩ := languages_agree textConfig "c"
  obtain ⟨problem, hproblem⟩ : ∃ problem, getProblem oneTest textConfig.problemsDir
      textConfig.format zeroJob.problemId = .ok (some problem) := ⟨_, rfl⟩
  constructor
  · rw [← hrefuse zeroSurroundings "ann" _ _ _ oneTest problem zeroJob hsubmits (by decide)
      (by decide) (by decide) hproblem, acceptSubmission_zeroJob]
    simp
  · obtain ⟨response, h202, hannounce⟩ :=
      @announceSubmission_path textConfig _ _ zeroJob_payload 1 1
    have htoken : (zeros 64).text ≠ [] := by decide
    have henqueue := path_append_iff.mpr
      ⟨_, @enqueueSubmission_path _ _ _ zeroJob_payload 1, hannounce⟩
    have hpath := path_append_iff.mpr
      ⟨_, postSubmit_path htoken acceptSubmission_zeroJob, henqueue⟩
    obtain ⟨id, -, -, -, -, -, rfl, ⟨json, hdump, hlanguage⟩, -⟩ :=
      haccepted _ _ _ _ _ _ response hsubmits hpath h202
    exact ⟨_, response, hpath, h202, json, hdump, hlanguage.trans (by decide)⟩

end Ocpe
